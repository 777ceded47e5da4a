import Coordination.Proofs.Chronicle
import Coordination.Proofs.Numbering

namespace Coordination

namespace Deed

def numbers (d : Deed) : Bool :=
  match d.op with
  | .create _ _ mode => mode.sequential
  | _ => false

inductive Admitted (v : View) : Deed → Prop
  | intro {s : Stamp} {op : Op} {e : Option Edit} {o : Outcome} :
      v.Admits s op e o → Admitted v (Deed.of s op o)

variable {v : View} {d : Deed} {p : String}

theorem not_removes_of_numbers (h : d.numbers = true) : d.removes p = false := by
  cases hop : d.op with
  | create r data mode => simp [removes, hop]
  | _ => simp [numbers, hop] at h

theorem path_of_makes (h : d.makes p = true) : d.path = p := by
  cases hop : d.op with
  | create r data mode => simpa [makes, hop] using h
  | _ => simp [makes, hop] at h

theorem Admitted.absent (h : d.Admitted v) (hm : d.makes p = true) : v p = none := by
  obtain ⟨hadm⟩ := h
  cases hadm with
  | create _ _ hp _ _ _ =>
      obtain rfl : _ = p := by simpa [Deed.of, makes] using hm
      exact hp
  | _ => cases hm

theorem Admitted.ne_root (h : d.Admitted v) (hm : d.makes p = true) : p ≠ Path.root := by
  obtain ⟨hadm⟩ := h
  cases hadm with
  | create _ _ _ hq _ _ =>
      obtain rfl : _ = p := by simpa [Deed.of, makes] using hm
      exact Path.ne_root_of_parent? hq
  | _ => cases hm

theorem Admitted.numbered (h : d.Admitted v) (hnum : d.numbers = true)
    (hp : Path.parent? d.path = some p) :
    d.bears p = true ∧
      ∃ parent, v p = some parent ∧ d.path = Path.numbered d.op.path parent.stat.cversion := by
  obtain ⟨hadm⟩ := h
  cases hadm with
  | create hnames _ _ _ _ _ =>
      cases hnames with
      | requested hm _ => exact absurd (hm.symm.trans hnum) (by decide)
      | @numbered q parent _ _ hq hparent =>
          have hpath := Path.parent?_numbered hq parent.stat.cversion
          obtain rfl : q = p := Option.some.inj (hpath.symm.trans hp)
          exact ⟨by simpa [Deed.of, bears] using hpath, parent, hparent, rfl⟩
  | _ => cases hnum

end Deed

namespace History

variable {h before between after : History} {d first second : Deed} {p q : String}

/-- How often the children of a path have changed since it was made. -/
def counter (h : History) (p : String) : Nat := (h.since p).countP (·.bears p)

/-- Everything was admitted by what was to be seen when it was done. -/
def Lawful (h : History) : Prop :=
  ∀ (before : History) (d : Deed) (after : History), h = before ++ d :: after →
    ∃ v, before.Chronicled v ∧ d.Admitted v

theorem Standing.append (hs : before.Standing p) (hno : ∀ d ∈ between, d.removes p = false) :
    History.Standing (before ++ between) p := by
  induction between generalizing before with
  | nil => simpa using hs
  | cons d between ih =>
      have hone : History.Standing (before ++ [d]) p := by
        rw [standing_concat]
        cases hm : d.makes p with
        | true => exact .inl rfl
        | false => exact .inr ⟨rfl, hno d List.mem_cons_self, hs⟩
      have hrest := ih hone fun d hd => hno d (List.mem_cons_of_mem _ hd)
      rwa [List.append_assoc] at hrest

theorem counter_append (hno : ∀ d ∈ after, d.makes p = false) :
    counter (before ++ after) p = after.countP (·.bears p) + counter before p := by
  rw [counter, since_append hno, List.countP_append, List.countP_reverse]
  rfl

theorem makes_of_bears (h : d.bears p = true) : d.makes p = false := by
  cases hop : d.op with
  | create r data mode =>
      have hp : Path.parent? d.path = some p := by simpa [Deed.bears, hop] using h
      simpa [Deed.makes, hop] using Ne.symm (Path.parent?_ne hp)
  | _ => simp [Deed.makes, hop]

theorem counter_lt (hb : d.bears p = true) (hno : ∀ d ∈ after, d.makes p = false) :
    before.counter p < counter (before ++ d :: after) p := by
  have hall : ∀ x ∈ d :: after, x.makes p = false := by
    intro x hx
    rcases List.mem_cons.1 hx with rfl | hx
    · exact makes_of_bears hb
    · exact hno x hx
  rw [counter_append hall, List.countP_cons_of_pos hb]
  omega

theorem Lawful.path_eq (hl : Lawful (before ++ d :: after)) (hnum : d.numbers = true)
    (hp : Path.parent? d.path = some p) :
    d.bears p = true ∧ (p = Path.root ∨ before.Standing p) ∧
      (before.counter p ≤ maxVersion → d.path = Path.numbered d.op.path (before.counter p)) := by
  obtain ⟨v, hv, hadm⟩ := hl before d after rfl
  obtain ⟨hbears, parent, hparent, hpath⟩ := hadm.numbered hnum hp
  refine ⟨hbears, ?_, fun hcount => ?_⟩
  · exact Decidable.or_iff_not_imp_left.2 fun hroot => (hv.live hroot).1 ⟨parent, hparent⟩
  · have hcversion : parent.stat.cversion = .after (before.counter p) :=
      (hv.nodes hparent).cversion
    rw [hpath, hcversion, Version.after_eq hcount]

theorem Lawful.not_makes (hl : Lawful (before ++ between ++ after))
    (hs : p = Path.root ∨ before.Standing p) (hno : ∀ d ∈ between, d.removes p = false) :
    ∀ d ∈ between, d.makes p = false := by
  intro d hd
  obtain ⟨early, late, rfl⟩ := List.append_of_mem hd
  obtain ⟨v, hv, hadm⟩ := hl (before ++ early) d (late ++ after) (by simp)
  refine Bool.eq_false_iff.2 fun hm => ?_
  have hroot := hadm.ne_root hm
  have hstands : History.Standing (before ++ early) p :=
    (hs.resolve_left hroot).append fun x hx => hno x (List.mem_append_left _ hx)
  obtain ⟨n, hn⟩ := (hv.live hroot).2 hstands
  exact absurd (hn.symm.trans (hadm.absent hm)) (by simp)

theorem Lawful.exists_birth (hl : h.Lawful) (hs : h.Standing q) (hq : Path.parent? q = some p) :
    ∃ (before : History) (d : Deed) (after : History), h = before ++ d :: after ∧
      h.birth q = some d ∧ d.makes q = true ∧ ∀ x ∈ after, x.makes p = false := by
  obtain ⟨d, hfind, hd⟩ := hs
  obtain ⟨-, late, early, hrev, hlate⟩ := List.find?_eq_some_iff_append.1 hfind
  have hh : h = early.reverse ++ d :: late.reverse := by
    have := congrArg List.reverse hrev
    simpa using this
  have hneither : ∀ x ∈ late, x.makes q = false ∧ x.removes q = false := by
    intro x hx
    simpa using hlate x hx
  refine ⟨early.reverse, d, late.reverse, hh, ?_, hd, ?_⟩
  · exact List.find?_eq_some_iff_append.2 ⟨hd, late, early, hrev, fun x hx => by
      simp [(hneither x hx).1]⟩
  · intro x hx
    obtain ⟨early', late', hsplit⟩ := List.append_of_mem hx
    obtain ⟨v, hv, hadm⟩ := hl (early.reverse ++ d :: early') x late' (by simp [hh, hsplit])
    refine Bool.eq_false_iff.2 fun hm => ?_
    -- the node is there in between, and so is its parent
    have hmade : History.Standing (early.reverse ++ [d]) q := standing_concat.2 (.inl hd)
    have hstands : History.Standing (early.reverse ++ [d] ++ early') q := hmade.append fun y hy =>
      (hneither y (List.mem_reverse.1 (hsplit ▸ List.mem_append_left _ hy))).2
    rw [List.append_assoc, List.singleton_append] at hstands
    have hroot := Path.ne_root_of_parent? hq
    obtain ⟨p', hp', hchild⟩ := hv.linked.parent ((hv.live hroot).2 hstands) hroot
    obtain rfl : p = p' := Option.some.inj (hq.symm.trans hp')
    obtain ⟨n, hn⟩ := hchild.live
    exact absurd (hn.symm.trans (hadm.absent hm)) (by simp)

/-- Two sequential creates in one life of their parent. -/
theorem Lawful.names (hl : Lawful (before ++ first :: between ++ second :: after))
    (hfirst : first.numbers = true) (hsecond : second.numbers = true)
    (hp : Path.parent? first.path = some p) (hp' : Path.parent? second.path = some p)
    (hno : ∀ d ∈ between, d.removes p = false) :
    before.counter p < counter (before ++ first :: between) p ∧
      (before.counter p ≤ maxVersion →
        first.path = Path.numbered first.op.path (before.counter p)) ∧
      (counter (before ++ first :: between) p ≤ maxVersion →
        second.path = Path.numbered second.op.path (counter (before ++ first :: between) p)) := by
  have hl' := hl
  rw [List.append_assoc, List.cons_append] at hl'
  obtain ⟨hbears, hstands, hpath⟩ := hl'.path_eq hfirst hp
  obtain ⟨-, -, hpath'⟩ := hl.path_eq hsecond hp'
  have hkeeps : ∀ d ∈ first :: between, d.removes p = false := by
    intro d hd
    rcases List.mem_cons.1 hd with rfl | hd
    · exact Deed.not_removes_of_numbers hfirst
    · exact hno d hd
  have hmakes := hl.not_makes hstands hkeeps
  exact ⟨counter_lt hbears fun d hd => hmakes d (List.mem_cons_of_mem _ hd), hpath, hpath'⟩

variable {v : View} {parent n : Node} {r : String}

theorem Chronicled.birth_unnumbered (hv : h.Chronicled v) (hl : h.Lawful) (hp : v p = some parent)
    (hr : Path.parent? r = some p)
    (hn : v (Path.numbered r parent.stat.cversion) = some n)
    (hbound : h.counter p ≤ maxVersion) :
    ∃ d, h.birth (Path.numbered r parent.stat.cversion) = some d ∧ d.numbers = false := by
  have hcversion : parent.stat.cversion = h.counter p :=
    (hv.nodes hp).cversion.trans (Version.after_eq hbound)
  rw [hcversion] at hn ⊢
  have hcounter : h.counter p ≤ 2147483647 := Int.ofNat_le.1 hbound
  have hq := Path.parent?_numbered hr (h.counter p)
  have hstands := (hv.live (Path.ne_root_of_parent? hq)).1 ⟨n, hn⟩
  obtain ⟨before, d, after, rfl, hbirth, hmakes, hno⟩ := hl.exists_birth hstands hq
  refine ⟨d, hbirth, Bool.eq_false_iff.2 fun hnum => ?_⟩
  have hpath := Deed.path_of_makes hmakes
  obtain ⟨hbears, -, hname⟩ := hl.path_eq hnum (hpath ▸ hq)
  have hlt : before.counter p < counter (before ++ d :: after) p := counter_lt hbears hno
  have hbefore : (before.counter p : Int) ≤ maxVersion :=
    Int.le_trans (Int.ofNat_le.2 (Nat.le_of_lt hlt)) hbound
  have hsame :=
    (Path.numbered_inj (by omega) (by omega) ((hname hbefore).symm.trans hpath)).2
  omega

end History

namespace Draft

theorem target_ne_nodeExists (d : Draft) (r : String) (mode : CreateMode) :
    d.target r mode ≠ .error .nodeExists := by
  unfold target
  split
  · split
    · split
      · simp
      · split <;> simp
    · simp
  · split <;> simp

theorem accept_nodeExists {d : Draft} {s : Stamp} {r : String} {data : Bytes} {mode : CreateMode}
    (h : d.accept s (.create r data mode) = .error .nodeExists) (hm : mode.sequential = true) :
    ∃ p parent, Path.parent? r = some p ∧ d.resolve p = some parent ∧
      ∃ n, d.resolve (Path.numbered r parent.stat.cversion) = some n := by
  simp only [accept, acceptCreate] at h
  split at h <;> rename_i htarget
  · obtain rfl := Except.error.inj h
    exact absurd htarget (target_ne_nodeExists d r mode)
  · obtain ⟨hnames, -⟩ := target_ok htarget
    cases hnames with
    | requested hno _ => exact absurd (hm.symm.trans hno) (by decide)
    | @numbered p parent _ _ hp hparent =>
        refine ⟨p, parent, hp, hparent, Option.isSome_iff_exists.1 ?_⟩
        unfold acceptCreateAt at h
        split at h
        · assumption
        · split at h
          · cases h
          · split at h <;> cases h

end Draft

namespace Stepwise

theorem of_plan_error {t : Tree} {s : Stamp} {ops : List Op} {r : Rejection}
    (h : t.plan ops s = .error r) :
    ∃ hk : r.index < ops.length, ∃ cs u r', Stepwise s t (ops.take r.index) cs u ∧
      u.plan [ops[r.index]] s = .error r' ∧ r'.cause = r.cause := by
  rcases total s t ops with ⟨cs, u, hsteps⟩ | ⟨k, hk, cs, u, r', hsteps, hr'⟩
  · obtain ⟨plan, hplan, -⟩ := hsteps.commit_eq
    cases h.symm.trans hplan
  · have hrej := Draft.acceptAll_of_refused (i := 0) (Draft.resolve_ofTree_eq t) hsteps hr'
      (ops.drop (k + 1))
    rw [← List.drop_eq_getElem_cons hk, List.take_append_drop,
      List.length_take_of_le (Nat.le_of_lt hk), Nat.zero_add] at hrej
    obtain rfl := Except.error.inj (h.symm.trans hrej)
    exact ⟨hk, cs, u, r', hsteps, hr', rfl⟩

end Stepwise

namespace Tree

open History

variable {t u : Tree} {h : History} {s : Stamp} {ops : List Op} {cs : List Commit}

theorem admitted_stepwise (hsteps : Stepwise s t ops cs u) (ht : h.Chronicled t.lookup)
    {before : History} {d : Deed} {after : History}
    (hd : deeds s ops (cs.flatMap Commit.outcomes) = before ++ d :: after) :
    ∃ v, (h ++ before).Chronicled v ∧ d.Admitted v := by
  induction hsteps generalizing h before with
  | nil => cases before <;> cases hd
  | @cons t u op ops plan cs hplan _ ih =>
      obtain ⟨e, o, hadm, rfl, hlook⟩ := Draft.admits_of_plan hplan
      have hone := ht.admits hadm
      rw [← hlook] at hone
      cases before with
      | nil =>
          obtain ⟨rfl, -⟩ := List.cons.inj hd
          exact ⟨t.lookup, (List.append_nil h).symm ▸ ht, .intro hadm⟩
      | cons x before =>
          obtain ⟨rfl, hrest⟩ := List.cons.inj hd
          obtain ⟨v, hv, hadmitted⟩ := ih hone hrest
          rw [List.append_assoc] at hv
          exact ⟨v, hv, hadmitted⟩

theorem Recorded.lawful (hr : Recorded h t) : h.Lawful := by
  induction hr with
  | initial =>
      intro before d after hd
      cases before <;> cases hd
  | @commit h t s ops plan hrec hplan ih =>
      intro before d after hd
      obtain ⟨cs, u, hsteps, hos, -, -⟩ := Stepwise.exists_commits hplan
      rw [hos] at hd
      rcases List.append_eq_append_iff.1 hd with ⟨early, rfl, hnew⟩ | ⟨late, hold, hnew⟩
      · exact admitted_stepwise hsteps hrec.chronicled.1 hnew
      · cases late with
        | nil =>
            have hnew' : deeds s ops (cs.flatMap Commit.outcomes) = [] ++ d :: after := hnew.symm
            obtain ⟨v, hv, hadm⟩ := admitted_stepwise hsteps hrec.chronicled.1 hnew'
            rw [List.append_nil] at hold hv
            exact ⟨v, hold ▸ hv, hadm⟩
        | cons x late =>
            obtain ⟨rfl, -⟩ := List.cons.inj hnew
            exact ih before d late hold

/-- In one life of a path, where it is not removed and its children change less than 2³¹ times, no
two sequential creates under it make the same name, and of two with the same text the later makes
the greater. A name ends in the number of changes that the children have seen by then. What keeps a
sequential create from its name was made without a counter. -/
theorem sequential_names (hr : Recorded h t) :
    (∀ (before : History) (first : Deed) (between : History) (second : Deed) (after : History)
        (p : String), h = before ++ first :: between ++ second :: after →
      first.numbers = true → second.numbers = true →
      Path.parent? first.path = some p → Path.parent? second.path = some p →
      (∀ d ∈ between, d.removes p = false) →
      counter (before ++ first :: between) p < 2147483648 →
      second.path = Path.numbered second.op.path (counter (before ++ first :: between) p) ∧
        first.path ≠ second.path ∧
        (first.op.path = second.op.path → Format.utf8 first.path < Format.utf8 second.path)) ∧
    ∀ (s : Stamp) (ops : List Op) (rejection : Rejection) (r : String) (data : Bytes)
        (mode : CreateMode), t.plan ops s = .error rejection → rejection.cause = .nodeExists →
      ops[rejection.index]? = some (.create r data mode) → mode.sequential = true →
      ∃ plan p parent n, t.plan (ops.take rejection.index) s = .ok plan ∧
        Path.parent? r = some p ∧ (t.commit plan).tree.lookup p = some parent ∧
        (t.commit plan).tree.lookup (Path.numbered r parent.stat.cversion) = some n ∧
        (counter (h ++ deeds s (ops.take rejection.index) plan.outcomes) p < 2147483648 → ∃ d,
          birth (h ++ deeds s (ops.take rejection.index) plan.outcomes)
              (Path.numbered r parent.stat.cversion) = some d ∧ d.numbers = false) := by
  have hl := hr.lawful
  constructor
  · rintro before first between second after p rfl hfirst hsecond hp hp' hno hbound
    obtain ⟨hlt, hname, hname'⟩ := hl.names hfirst hsecond hp hp' hno
    replace hname := hname (Version.natCast_le (Nat.lt_trans hlt hbound))
    replace hname' := hname' (Version.natCast_le hbound)
    refine ⟨hname', fun he => ?_, fun he => ?_⟩
    · rw [hname, hname'] at he
      exact Nat.ne_of_lt hlt (Path.numbered_inj (by omega) (by omega) he).2
    · rw [hname, hname', he]
      exact Path.numbered_lt (by omega) hlt
  · intro s ops rejection r data mode hplan hcause hop hmode
    obtain ⟨hk, cs, u, r', hsteps, hrefused, hcause'⟩ := Stepwise.of_plan_error hplan
    obtain ⟨plan, hprefix, -, -, htree⟩ := hsteps.commit_eq
    have hop' : ops[rejection.index] = .create r data mode :=
      Option.some.inj ((List.getElem?_eq_getElem hk).symm.trans hop)
    rw [hop'] at hrefused
    have haccept := Draft.plan_singleton_error hrefused
    rw [hcause', hcause] at haccept
    obtain ⟨p, parent, hp, hparent, n, hn⟩ := Draft.accept_nodeExists haccept hmode
    have hrec := hr.commit hprefix
    rw [Draft.resolve_ofTree] at hparent hn
    have hlook : (t.commit plan).tree.lookup = u.lookup := by
      rw [htree]
      rfl
    rw [← hlook] at hparent hn
    refine ⟨plan, p, parent, n, hprefix, hp, hparent, hn, fun hbound => ?_⟩
    exact hrec.chronicled.1.birth_unnumbered hrec.lawful hparent hp hn
      (Version.natCast_le hbound)

theorem sequential_names_queue :
    ∃ h t, Recorded h t ∧
      (∃ before first between second, h = before ++ first :: between ++ [second] ∧
        first.path = "/q/0000000000" ∧ second.path = "/q/0000000002" ∧
        Format.utf8 first.path < Format.utf8 second.path) ∧
      ∃ plan d, t.plan [.create "/q/0000000004" [] .persistent] ⟨3, 30, 1⟩ = .ok plan ∧
        birth (h ++ deeds ⟨3, 30, 1⟩ [.create "/q/0000000004" [] .persistent] plan.outcomes)
          "/q/0000000004" = some d ∧ d.numbers = false := by
  obtain ⟨first, hfirst⟩ : ∃ plan, Tree.initial.plan
      [.create "/q" [] .persistent, .create "/q/" [] .persistentSequential,
        .delete "/q/0000000000" 0] ⟨1, 10, 1⟩ = .ok plan := ⟨_, rfl⟩
  obtain ⟨second, hsecond⟩ : ∃ plan, (Tree.initial.commit first).tree.plan
      [.create "/q/" [] .ephemeralSequential] ⟨2, 20, 2⟩ = .ok plan := by
    obtain rfl := Except.ok.inj hfirst
    exact ⟨_, rfl⟩
  have hr := (Recorded.initial.commit hfirst).commit hsecond
  obtain ⟨hnames, hrefused⟩ := sequential_names hr
  obtain rfl := Except.ok.inj hfirst
  obtain rfl := Except.ok.inj hsecond
  obtain ⟨-, -, hlt⟩ := hnames [_] _ [_] _ [] "/q" rfl rfl rfl (by decide +kernel)
    (by decide +kernel) (by decide +kernel) (by decide +kernel)
  refine ⟨_, _, hr, ⟨[_], _, [_], _, rfl, rfl, rfl, hlt rfl⟩, ?_⟩
  obtain ⟨plan, p, parent, n, hplan, hp, hparent, -, hbirth⟩ := hrefused ⟨3, 30, 1⟩
    [.create "/q/0000000004" [] .persistent, .create "/q/" [] .persistentSequential]
    ⟨1, "/q/", .nodeExists⟩ "/q/" [] .persistentSequential rfl rfl rfl rfl
  obtain rfl := Option.some.inj hp
  obtain rfl := Except.ok.inj hplan
  obtain rfl := Option.some.inj hparent
  obtain ⟨d, hd, hnum⟩ := hbirth (by decide +kernel)
  exact ⟨_, d, rfl, hd, hnum⟩

end Tree

end Coordination
