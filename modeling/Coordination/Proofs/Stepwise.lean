import Coordination.Proofs.View

/-!
A batch means the sequence of its operations: checked against a draft and committed as one, it has
the tree, the events and the outcomes of its operations committed one at a time, and it is rejected
at the first of them that would be rejected alone (`plan_eq_stepwise`).
-/

namespace Coordination

/-- Operations committed one at a time, each as a batch of its own, all under one stamp. -/
inductive Stepwise (s : Stamp) : Tree → List Op → List Commit → Tree → Prop
  | nil {t : Tree} : Stepwise s t [] [] t
  | cons {t u : Tree} {op : Op} {ops : List Op} {plan : Plan} {cs : List Commit} :
      t.plan [op] s = .ok plan → Stepwise s (t.commit plan).tree ops cs u →
      Stepwise s t (op :: ops) (t.commit plan :: cs) u

namespace Draft

variable {d : Draft} {t u : Tree} {s : Stamp} {op : Op} {ops : List Op} {plan : Plan}
variable {cs : List Commit}

theorem acceptAll_cons_ok {i : Nat} :
    d.acceptAll s i (op :: ops) = .ok plan ↔
      ∃ a rest, d.accept s op = .ok a ∧ a.draft.acceptAll s (i + 1) ops = .ok rest ∧
        plan = { rest with
          edits := a.edit?.toList ++ rest.edits, outcomes := a.outcome :: rest.outcomes } := by
  cases ha : d.accept s op with
  | error cause => simp [acceptAll, ha]
  | ok a => cases hrest : a.draft.acceptAll s (i + 1) ops <;> simp [acceptAll, ha, hrest, eq_comm]

theorem stamp_acceptAll {i : Nat} (h : d.acceptAll s i ops = .ok plan) : plan.stamp = s := by
  induction ops generalizing d i plan with
  | nil =>
      obtain rfl := Except.ok.inj h
      rfl
  | cons op ops ih =>
      obtain ⟨a, rest, -, hrest, rfl⟩ := acceptAll_cons_ok.1 h
      have hs : rest.stamp = s := ih hrest
      exact hs

theorem plan_singleton_ok (h : t.plan [op] s = .ok plan) :
    ∃ a, (ofTree t).accept s op = .ok a ∧
      plan = { stamp := s, edits := a.edit?.toList, outcomes := [a.outcome] } := by
  obtain ⟨a, rest, ha, hrest, rfl⟩ := acceptAll_cons_ok.1 h
  obtain rfl := Except.ok.inj hrest
  exact ⟨a, ha, by simp⟩

theorem admits_of_plan (h : t.plan [op] s = .ok plan) :
    ∃ e o, View.Admits s t.lookup op e o ∧
      plan = { stamp := s, edits := e.toList, outcomes := [o] } ∧
      (t.commit plan).tree.lookup = View.editAll s t.lookup e.toList := by
  obtain ⟨a, ha, rfl⟩ := plan_singleton_ok h
  exact ⟨a.edit?, a.outcome, (accept_spec ha).1, rfl, Tree.lookup_commit t _⟩

theorem admits_of_mem {i : Nat} (h : d.acceptAll s i ops = .ok plan) {e : Edit}
    (he : e ∈ plan.edits) : ∃ v op o, op ∈ ops ∧ View.Admits s v op (some e) o := by
  induction ops generalizing d i plan with
  | nil =>
      obtain rfl := Except.ok.inj h
      cases he
  | cons op ops ih =>
      obtain ⟨a, rest, ha, hrest, rfl⟩ := acceptAll_cons_ok.1 h
      rcases List.mem_append.1 he with he | he
      · have hadm := (accept_spec ha).1
        rw [Option.mem_toList.1 he] at hadm
        exact ⟨_, op, _, List.mem_cons_self, hadm⟩
      · obtain ⟨v, op', o, hop, hadm⟩ := ih hrest he
        exact ⟨v, op', o, List.mem_cons_of_mem op hop, hadm⟩

theorem plan_singleton_error {r : Rejection} (h : t.plan [op] s = .error r) :
    (ofTree t).accept s op = .error r.cause := by
  simp only [Tree.plan, acceptAll] at h
  split at h
  · rename_i cause hc
    simp only [Except.error.injEq] at h
    rw [hc, ← h]
  · simp at h

/-- A draft that shows a tree accepts what the tree would commit alone, and goes on showing it. -/
theorem accept_of_plan (hd : d.resolve = t.lookup) (h : t.plan [op] s = .ok plan) :
    ∃ a, d.accept s op = .ok a ∧
      plan = { stamp := s, edits := a.edit?.toList, outcomes := [a.outcome] } ∧
      a.draft.resolve = (t.commit plan).tree.lookup := by
  obtain ⟨b, hb, rfl⟩ := plan_singleton_ok h
  have hshown : (ofTree t).resolve = d.resolve := (resolve_ofTree_eq t).trans hd.symm
  obtain ⟨a, ha, he, ho⟩ := accept_ok_congr (fun p _ => congrFun hshown p) hb
  refine ⟨a, ha, by rw [he, ho], ?_⟩
  rw [(accept_spec ha).2, Tree.lookup_commit, hd, he]

theorem plan_of_accept {a : Acceptance} (hd : d.resolve = t.lookup) (h : d.accept s op = .ok a) :
    ∃ plan, t.plan [op] s = .ok plan ∧ a.draft.resolve = (t.commit plan).tree.lookup := by
  have hshown : d.resolve = (ofTree t).resolve := hd.trans (resolve_ofTree_eq t).symm
  obtain ⟨b, hb, he, -⟩ := accept_ok_congr (fun p _ => congrFun hshown p) h
  refine ⟨{ stamp := s, edits := b.edit?.toList, outcomes := [b.outcome] }, ?_, ?_⟩
  · simp [Tree.plan, acceptAll, hb]
  · rw [(accept_spec h).2, Tree.lookup_commit, hd, he]

theorem acceptAll_of_stepwise {i : Nat} (hd : d.resolve = t.lookup)
    (h : Stepwise s t ops cs u) :
    ∃ plan, d.acceptAll s i ops = .ok plan ∧
      plan.outcomes = cs.flatMap Commit.outcomes ∧
      plan.edits.flatMap Edit.events = cs.flatMap Commit.events ∧
      View.editAll s t.lookup plan.edits = u.lookup := by
  induction h generalizing d i with
  | nil => exact ⟨_, rfl, rfl, rfl, rfl⟩
  | @cons t u op ops first cs hfirst hrest ih =>
      obtain ⟨a, ha, hplan, hdraft⟩ := accept_of_plan hd hfirst
      obtain ⟨rest, hacc, ho, he, hv⟩ := ih (i := i + 1) hdraft
      refine ⟨_, by simp only [acceptAll, ha, hacc]; rfl, ?_, ?_, ?_⟩
      · simp [ho, hplan, Tree.commit]
      · simp [he, hplan, Tree.commit]
      · rw [View.editAll_append, ← hv, Tree.lookup_commit, hplan]

theorem acceptAll_of_refused {i : Nat} {r : Rejection} (hd : d.resolve = t.lookup)
    (h : Stepwise s t ops cs u) (hop : u.plan [op] s = .error r) (rest : List Op) :
    d.acceptAll s i (ops ++ op :: rest) =
      .error { index := i + ops.length, path := op.path, cause := r.cause } := by
  induction h generalizing d i with
  | @nil t =>
      have hshown : (ofTree t).resolve = d.resolve := (resolve_ofTree_eq t).trans hd.symm
      have hc := accept_error_congr (fun p _ => congrFun hshown p) (plan_singleton_error hop)
      simp [acceptAll, hc]
  | @cons t u op' ops first cs hfirst hrest ih =>
      obtain ⟨a, ha, -, hdraft⟩ := accept_of_plan hd hfirst
      have hacc := ih (i := i + 1) hdraft hop
      have hlen : i + 1 + ops.length = i + (op' :: ops).length := by
        rw [List.length_cons]
        omega
      simp only [List.cons_append, acceptAll, ha, hacc, hlen]

theorem exists_stepwise {i : Nat} (hd : d.resolve = t.lookup)
    (h : d.acceptAll s i ops = .ok plan) : ∃ cs u, Stepwise s t ops cs u := by
  induction ops generalizing d t i plan with
  | nil => exact ⟨[], t, .nil⟩
  | cons op ops ih =>
      obtain ⟨a, rest, ha, hrest, -⟩ := acceptAll_cons_ok.1 h
      obtain ⟨first, hfirst, hdraft⟩ := plan_of_accept hd ha
      obtain ⟨cs, u, hcs⟩ := ih hdraft hrest
      exact ⟨_, u, .cons hfirst hcs⟩

section After

variable {d' : Draft} {i : Nat} {xs ys : List Op}

def after? (s : Stamp) (d : Draft) : List Op → Option Draft
  | [] => some d
  | op :: ops =>
      match d.accept s op with
      | .error _ => none
      | .ok a => after? s a.draft ops

theorem after?_cons_eq_some :
    d.after? s (op :: ops) = some d' ↔
      ∃ a, d.accept s op = .ok a ∧ a.draft.after? s ops = some d' := by
  cases h : d.accept s op <;> simp [after?, h]

theorem acceptAll_cons_error {a : Acceptance} {r : Rejection} (h : d.accept s op = .ok a) :
    d.acceptAll s i (op :: ops) = .error r ↔ a.draft.acceptAll s (i + 1) ops = .error r := by
  simp only [acceptAll, h]
  cases a.draft.acceptAll s (i + 1) ops <;> simp

theorem le_index_of_acceptAll {r : Rejection} (h : d.acceptAll s i ops = .error r) :
    i ≤ r.index := by
  induction ops generalizing d i with
  | nil => cases h
  | cons op ops ih =>
      cases ha : d.accept s op with
      | error cause =>
          simp only [acceptAll, ha] at h
          obtain rfl := Except.error.inj h
          exact Nat.le_refl i
      | ok a => exact Nat.le_of_succ_le (ih ((acceptAll_cons_error ha).1 h))

theorem acceptAll_append_error {r : Rejection} (h : d.after? s xs = some d') :
    d.acceptAll s i (xs ++ ys) = .error r ↔ d'.acceptAll s (i + xs.length) ys = .error r := by
  induction xs generalizing d i with
  | nil =>
      obtain rfl : d = d' := Option.some.inj h
      rfl
  | cons x xs ih =>
      obtain ⟨a, ha, h⟩ := after?_cons_eq_some.1 h
      have hlen : i + (x :: xs).length = i + 1 + xs.length := by
        rw [List.length_cons]
        omega
      rw [List.cons_append, acceptAll_cons_error ha, ih h, hlen]

theorem acceptAll_error_iff {cause : Refusal} (h : d.after? s xs = some d') :
    d.acceptAll s i (xs ++ op :: ys) = .error ⟨i + xs.length, op.path, cause⟩ ↔
      d'.accept s op = .error cause := by
  rw [acceptAll_append_error h]
  cases ha : d'.accept s op with
  | error c => simp [acceptAll, ha]
  | ok a =>
      rw [acceptAll_cons_error ha]
      refine iff_of_false (fun hrest => ?_) (by simp)
      exact absurd (le_index_of_acceptAll hrest) (Nat.not_succ_le_self _)

end After

end Draft

namespace Stepwise

variable {s : Stamp} {t u : Tree} {ops : List Op} {cs : List Commit}

theorem lastZxid_eq (h : Stepwise s t ops cs u) :
    u.lastZxid = if ops = [] then t.lastZxid else s.zxid := by
  induction h with
  | nil => rfl
  | @cons t u op ops plan cs hplan hrest ih =>
      rw [ih, if_neg (List.cons_ne_nil _ _), Tree.lastZxid_commit, Draft.stamp_acceptAll hplan,
        ite_self]

theorem commit_eq (h : Stepwise s t ops cs u) :
    ∃ plan, t.plan ops s = .ok plan ∧
      plan.outcomes = cs.flatMap Commit.outcomes ∧
      (t.commit plan).events = cs.flatMap Commit.events ∧
      (t.commit plan).tree = { u with lastZxid := s.zxid } := by
  obtain ⟨plan, hplan, ho, he, hv⟩ :=
    Draft.acceptAll_of_stepwise (i := 0) (Draft.resolve_ofTree_eq t) h
  refine ⟨plan, hplan, ho, he, Tree.ext_lookup (fun p => ?_) ?_⟩
  · have hs := Draft.stamp_acceptAll hplan
    rw [Tree.lookup_commit, hs, hv]
    rfl
  · exact Draft.stamp_acceptAll hplan ▸ rfl

theorem of_plan {plan : Plan} (h : t.plan ops s = .ok plan) :
    ∃ cs u, Stepwise s t ops cs u ∧ (t.commit plan).tree = { u with lastZxid := s.zxid } := by
  obtain ⟨cs, u, hsteps⟩ := Draft.exists_stepwise (Draft.resolve_ofTree_eq t) h
  obtain ⟨plan', hplan, -, -, htree⟩ := hsteps.commit_eq
  obtain rfl : plan = plan' := Except.ok.inj (h.symm.trans hplan)
  exact ⟨cs, u, hsteps, htree⟩

theorem exists_commits {plan : Plan} (h : t.plan ops s = .ok plan) :
    ∃ cs u, Stepwise s t ops cs u ∧
      plan.outcomes = cs.flatMap Commit.outcomes ∧
      (t.commit plan).events = cs.flatMap Commit.events ∧
      (t.commit plan).tree = { u with lastZxid := s.zxid } := by
  obtain ⟨cs, u, hsteps⟩ := Draft.exists_stepwise (Draft.resolve_ofTree_eq t) h
  obtain ⟨plan', hplan, hrest⟩ := hsteps.commit_eq
  obtain rfl : plan = plan' := Except.ok.inj (h.symm.trans hplan)
  exact ⟨cs, u, hsteps, hrest⟩

theorem total (s : Stamp) (t : Tree) (ops : List Op) :
    (∃ cs u, Stepwise s t ops cs u) ∨
      ∃ k, ∃ hk : k < ops.length, ∃ cs u r,
        Stepwise s t (ops.take k) cs u ∧ u.plan [ops[k]] s = .error r := by
  induction ops generalizing t with
  | nil => exact .inl ⟨[], t, .nil⟩
  | cons op ops ih =>
      cases hplan : t.plan [op] s with
      | error r => exact .inr ⟨0, by simp, [], t, r, .nil, hplan⟩
      | ok plan =>
          rcases ih (t.commit plan).tree with ⟨cs, u, h⟩ | ⟨k, hk, cs, u, r, h, hr⟩
          · exact .inl ⟨_, u, .cons hplan h⟩
          · exact .inr ⟨k + 1, by simpa using hk, _, u, r, .cons hplan h, hr⟩

end Stepwise

theorem plan_eq_stepwise (s : Stamp) (t : Tree) (ops : List Op) (hops : ops ≠ []) :
    (∀ cs u, Stepwise s t ops cs u →
      ∃ plan, t.plan ops s = .ok plan ∧
        plan.outcomes = cs.flatMap Commit.outcomes ∧
        (t.commit plan).tree = u ∧
        (t.commit plan).events = cs.flatMap Commit.events) ∧
    (∀ k, ∀ hk : k < ops.length, ∀ cs u r,
      Stepwise s t (ops.take k) cs u → u.plan [ops[k]] s = .error r → ∀ rest,
        t.plan (ops.take (k + 1) ++ rest) s =
          .error { index := k, path := ops[k].path, cause := r.cause }) ∧
    ((∃ cs u, Stepwise s t ops cs u) ∨
      ∃ k, ∃ hk : k < ops.length, ∃ cs u r,
        Stepwise s t (ops.take k) cs u ∧ u.plan [ops[k]] s = .error r) := by
  refine ⟨fun cs u h => ?_, fun k hk cs u r h hr rest => ?_, Stepwise.total s t ops⟩
  · obtain ⟨plan, hplan, ho, he, ht⟩ := h.commit_eq
    have hz : u.lastZxid = s.zxid := by rw [h.lastZxid_eq, if_neg hops]
    refine ⟨plan, hplan, ho, ?_, he⟩
    rw [ht, ← hz]
  · have hrej := Draft.acceptAll_of_refused (i := 0) (Draft.resolve_ofTree_eq t) h hr rest
    have hlen : (ops.take k).length = k := List.length_take_of_le (Nat.le_of_lt hk)
    rw [hlen, Nat.zero_add] at hrej
    rw [List.take_succ_eq_append_getElem hk, List.append_assoc, List.singleton_append]
    exact hrej

theorem plan_eq_stepwise_queue :
    ∃ cs u plan r,
      Stepwise ⟨7, 90, 3⟩ .initial
        [.create "/q" [] .persistent, .create "/q/" [1] .ephemeralSequential] cs u ∧
      Tree.initial.plan [.create "/q" [] .persistent, .create "/q/" [1] .ephemeralSequential]
        ⟨7, 90, 3⟩ = .ok plan ∧
      (Tree.initial.commit plan).tree = u ∧
      u.plan [.delete "/q" anyVersion] ⟨7, 90, 3⟩ = .error r ∧
      Tree.initial.plan [.create "/q" [] .persistent, .create "/q/" [1] .ephemeralSequential,
        .delete "/q" anyVersion, .check "/q/0000000000" 0] ⟨7, 90, 3⟩ =
          .error { index := 2, path := "/q", cause := .notEmpty } := by
  obtain ⟨cs, u, h, hr⟩ : ∃ cs u,
      Stepwise ⟨7, 90, 3⟩ .initial
        [.create "/q" [] .persistent, .create "/q/" [1] .ephemeralSequential] cs u ∧
      u.plan [.delete "/q" anyVersion] ⟨7, 90, 3⟩ = .error ⟨0, "/q", .notEmpty⟩ :=
    ⟨_, _, .cons rfl (.cons rfl .nil), rfl⟩
  obtain ⟨plan, hplan, -, htree, -⟩ := (plan_eq_stepwise _ _ _ (by simp)).1 cs u h
  have hrej := (plan_eq_stepwise ⟨7, 90, 3⟩ .initial
    [.create "/q" [] .persistent, .create "/q/" [1] .ephemeralSequential,
      .delete "/q" anyVersion] (by simp)).2.1 2 (by decide) cs u _ h hr
        [.check "/q/0000000000" 0]
  exact ⟨cs, u, plan, _, h, hplan, htree, hr, hrej⟩

end Coordination
