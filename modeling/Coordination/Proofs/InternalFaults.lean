import Coordination.Proofs.Departure
import Coordination.Proofs.ResultLists
import Coordination.Proofs.WellFormed

/-!
Faults that only a slip in the store itself could cause, and that no call returns
(`internal_faults`). A batch is moved from phase to phase as its life allows, a draft still holds
the node that was just checked, one operation has one outcome of its own kind, and a watch that is
asked for whatever the tree holds is registered. What is left are the faults of the caller, of the
journal and of the lock, and none of them comes after the new tree has been published.
-/

namespace Coordination

open Watch (Handle Hub Mask)

namespace Fault

/-- Tells of a slip in the store itself. -/
def internal : Fault → Bool
  | .request (.badMove ..) | .request (.unexpectedOutcome ..) | .request .noOutcome
  | .request .notRegistered | .request (.other _) => true
  | _ => false

def told (path : String) : Fault → Fault
  | .rejected r _ => .refused path r.cause
  | f => f

theorem internal_told (path : String) (f : Fault) : (f.told path).internal = f.internal := by
  cases f <;> rfl

end Fault

section Submitting

variable {f : Fault} {now : Time} {s : SessionId} {ops : List Op}

theorem Config.checkBatch_error {c : Config} (h : c.checkBatch ops = .error f) :
    f.internal = false ∧ f.refusal? = none := by
  unfold checkBatch at h
  split at h
  · obtain rfl := Except.error.inj h
    exact ⟨rfl, rfl⟩
  · split at h
    · obtain rfl := Except.error.inj h
      exact ⟨rfl, rfl⟩
    · cases h

namespace Store

variable {st : Store}

theorem checkRunning_error (h : st.checkRunning = .error f) :
    f = .channelClosed .writerStopped := by
  unfold checkRunning at h
  split at h
  · cases h
  · exact (Except.error.inj h).symm

theorem submit_cases (st : Store) (now : Time) (s : SessionId) (ops : List Op) :
    (∃ f, st.submit now s ops = (.error f, st) ∧ f.internal = false ∧ f.refusal? = none) ∨
      ((st.submit now s ops).1 = (st.engine.submit st.writer.log now s ops).1 ∧
        (st.submit now s ops).2.tree = (st.engine.submit st.writer.log now s ops).2.1.tree) := by
  unfold Store.submit
  cases hcheck : st.config.checkBatch ops with
  | error f => exact .inl ⟨f, rfl, Config.checkBatch_error hcheck⟩
  | ok _ =>
      cases hrun : st.checkRunning with
      | error f =>
          obtain rfl := checkRunning_error hrun
          exact .inl ⟨_, rfl, rfl, rfl⟩
      | ok _ => exact .inr ⟨rfl, rfl⟩

end Store

theorem Engine.submit_error {σ : Type} [Journal.Sink σ] {e : Engine} {log : σ}
    (h : (e.submit log now s ops).1 = .error f) :
    f.internal = false ∧ (e.submit log now s ops).2.1.tree = e.tree := by
  obtain ⟨w, hw⟩ := submit_ends e log now s ops
  rw [h] at hw
  cases w with
  | halted =>
      obtain ⟨cause, -, hr, he, -⟩ := hw
      exact ⟨Except.error.inj hr ▸ rfl, congrArg Engine.tree he⟩
  | rejected =>
      obtain ⟨-, r, -, hr, hsame, -⟩ := hw
      exact ⟨Except.error.inj hr ▸ rfl, hsame.tree⟩
  | readOnly =>
      obtain ⟨-, -, plan, -, hr, -⟩ := hw
      cases hr
  | unrecorded =>
      obtain ⟨-, -, plan, fault, -, -, hr, htree, -⟩ := hw
      exact ⟨Except.error.inj hr ▸ rfl, htree⟩
  | recorded =>
      obtain ⟨-, -, plan, -, -, hr, -⟩ := hw
      cases hr

namespace Store

variable {st : Store}

theorem submit_error (h : (st.submit now s ops).1 = .error f) :
    f.internal = false ∧ (st.submit now s ops).2.tree = st.tree := by
  rcases st.submit_cases now s ops with ⟨f', hearly, hf', -⟩ | ⟨hanswer, htree⟩
  · rw [hearly] at h ⊢
    obtain rfl := Except.error.inj h
    exact ⟨hf', rfl⟩
  · rw [hanswer] at h
    rw [htree]
    exact Engine.submit_error h

theorem submit_ok {outcomes : List Outcome} (h : (st.submit now s ops).1 = .ok outcomes) :
    ∃ plan, st.tree.plan ops (st.engine.stamp now s) = .ok plan ∧ plan.outcomes = outcomes := by
  rcases st.submit_cases now s ops with ⟨f', hearly, -⟩ | ⟨hanswer, -⟩
  · rw [hearly] at h
    cases h
  · exact Engine.plan_of_submit_ok (hanswer.symm.trans h)

theorem submit_rejected {r : Rejection} {outcomes : List Outcome}
    (h : (st.submit now s ops).1 = .error (.rejected r outcomes)) :
    st.tree.plan ops (st.engine.stamp now s) = .error r := by
  rcases st.submit_cases now s ops with ⟨f', hearly, -, hf'⟩ | ⟨hanswer, -⟩
  · rw [hearly] at h
    obtain rfl := Except.error.inj h
    cases hf'
  · exact (Engine.submit_rejected_iff.1 (hanswer.symm.trans h)).2.1

end Store

end Submitting

theorem Path.check_error {p : String} {f : Fault} (h : Path.check p = .error f) :
    f.internal = false ∧ f.refusal? = none := by
  unfold Path.check at h
  split at h
  · cases h
  · obtain rfl := Except.error.inj h
    exact ⟨rfl, rfl⟩

namespace Watch.Hub

variable {hub : Hub} {s : SessionId} {p : String} {mask : Mask} {f : Fault}

theorem lock_error (h : hub.lock = .error f) : f = .lock .poisoned := by
  unfold lock at h
  split at h
  · exact (Except.error.inj h).symm
  · cases h

theorem register_error (h : hub.register s p mask = .error f) :
    f.internal = false ∧ f.refusal? = none := by
  unfold register at h
  split at h <;> rename_i hpath
  · obtain rfl := Except.error.inj h
    exact Path.check_error hpath
  · split at h
    · obtain rfl := Except.error.inj h
      exact ⟨rfl, rfl⟩
    · split at h <;> rename_i hlock
      · obtain rfl := Except.error.inj h
        exact lock_error hlock ▸ ⟨rfl, rfl⟩
      · split at h
        · cases h
        · obtain rfl := Except.error.inj h
          exact ⟨rfl, rfl⟩

theorem barrier_error {zxid : Zxid} (h : (hub.barrier s zxid).1 = .error f) :
    f.internal = false := by
  unfold barrier at h
  split at h <;> rename_i hlock
  · obtain rfl := Except.error.inj h
    exact lock_error hlock ▸ rfl
  · dsimp only at h
    split at h
    · cases h
    · exact Except.error.inj h ▸ rfl

theorem attach_error (h : hub.attach s = .error f) : f.internal = false := by
  unfold attach at h
  split at h <;> rename_i hlock
  · obtain rfl := Except.error.inj h
    exact lock_error hlock ▸ rfl
  · split at h
    · exact Except.error.inj h ▸ rfl
    · cases h

theorem cancel_error {k : Handle} (h : hub.cancel k = .error f) : f.internal = false := by
  unfold cancel at h
  split at h <;> rename_i hlock
  · obtain rfl := Except.error.inj h
    exact lock_error hlock ▸ rfl
  · cases h

theorem detach_error (h : hub.detach s = .error f) : f.internal = false := by
  unfold detach at h
  split at h <;> rename_i hlock
  · obtain rfl := Except.error.inj h
    exact lock_error hlock ▸ rfl
  · cases h

end Watch.Hub

namespace Session

variable {X : Session} {st : Store} {now : Time} {f : Fault}

theorem checkActive_error (h : X.checkActive = .error f) : f = .sessionClosed X.id := by
  unfold checkActive at h
  split at h
  · cases h
  · exact (Except.error.inj h).symm

theorem checkRead_error {p : String} (h : X.checkRead p = .error f) :
    f.internal = false ∧ f.refusal? = none := by
  unfold checkRead at h
  split at h <;> rename_i hactive
  · obtain rfl := Except.error.inj h
    exact checkActive_error hactive ▸ ⟨rfl, rfl⟩
  · exact Path.check_error h

section Changing

theorem multi_error {ops : List Op} (h : (X.multi st now ops).1 = .error f) :
    f.internal = false ∧ (X.multi st now ops).2.tree = st.tree := by
  unfold multi at h ⊢
  cases hactive : X.checkActive with
  | error g =>
      rw [hactive] at h
      obtain rfl := Except.error.inj h
      exact ⟨checkActive_error hactive ▸ rfl, rfl⟩
  | ok _ =>
      rw [hactive] at h
      exact Store.submit_error h

theorem multi_one {op : Op} {outcomes : List Outcome}
    (h : (X.multi st now [op]).1 = .ok outcomes) :
    ∃ o zxid v, outcomes = [o] ∧ op.Answers zxid v o := by
  unfold multi at h
  split at h
  · cases h
  · obtain ⟨plan, hplan, rfl⟩ := Store.submit_ok h
    obtain ⟨o, ho⟩ := List.length_eq_one_iff.1 (Draft.length_outcomes hplan)
    have hfirst : plan.outcomes[0]? = some o := by rw [ho]; rfl
    obtain ⟨d, e, -, hadm⟩ := Draft.admits_at hplan (k := 0) rfl hfirst
    exact ⟨o, _, _, ho, hadm.answers⟩

theorem multi_one_rejected {op : Op} {r : Rejection} {outcomes : List Outcome}
    (h : (X.multi st now [op]).1 = .error (.rejected r outcomes)) : r.path = op.path := by
  unfold multi at h
  split at h <;> rename_i hactive
  · obtain rfl := Except.error.inj h
    cases checkActive_error hactive
  · obtain ⟨xs, op', ys, d, hops, -, hpath, -⟩ :=
      Draft.acceptAll_eq_error (Store.submit_rejected h)
    obtain ⟨rfl, hop⟩ := List.append_eq_singleton_iff.1 hops.symm |>.resolve_right (by simp)
    rw [hpath, (List.cons.inj hop).1]

theorem single_cases (X : Session) (st : Store) (now : Time) (op : Op) :
    (∃ o zxid v, (X.multi st now [op]).1 = .ok [o] ∧ (X.single st now op).1 = .ok o ∧
      op.Answers zxid v o) ∨
    ∃ f, (X.multi st now [op]).1 = .error f ∧ (X.single st now op).1 = .error (f.told op.path) := by
  cases hmulti : (X.multi st now [op]).1 with
  | ok outcomes =>
      obtain ⟨o, zxid, v, rfl, hanswers⟩ := multi_one hmulti
      refine .inl ⟨o, zxid, v, rfl, ?_, hanswers⟩
      unfold single
      rw [← Prod.mk.eta (p := X.multi st now [op]), hmulti]
      rfl
  | error f =>
      refine .inr ⟨f, rfl, ?_⟩
      unfold single
      rw [← Prod.mk.eta (p := X.multi st now [op]), hmulti]
      cases f with
      | rejected r outcomes => rw [← multi_one_rejected hmulti]; rfl
      | _ => rfl

def Tells {α : Type} (batch : Except Fault (List Outcome)) (path : String)
    (answer : Except Fault α) : Prop :=
  ∀ f, answer = .error f ↔ ∃ g, batch = .error g ∧ f = g.told path

theorem tells_of_single {α : Type} (op : Op) {answer : Except Fault α}
    (hok : ∀ o zxid v, op.Answers zxid v o → (X.single st now op).1 = .ok o →
      ∃ a, answer = .ok a)
    (herror : ∀ g, (X.single st now op).1 = .error g → answer = .error g) :
    Tells (X.multi st now [op]).1 op.path answer := by
  intro f
  rcases X.single_cases st now op with
    ⟨o, zxid, v, hmulti, hsingle, hanswers⟩ | ⟨g, hmulti, hsingle⟩
  · obtain ⟨a, ha⟩ := hok o zxid v hanswers hsingle
    simp [hmulti, ha]
  · simp [hmulti, herror _ hsingle, eq_comm]

theorem create_tells (X : Session) (st : Store) (now : Time) (p : String) (data : Bytes)
    (mode : CreateMode) :
    Tells (X.multi st now [.create p data mode]).1 p (X.create st now p data mode).1 := by
  refine tells_of_single (.create p data mode) (fun o _ _ hanswers h => ?_) fun g h => ?_
  · unfold create
    rw [← Prod.mk.eta (p := X.single st now _), h]
    cases hanswers
    exact ⟨_, rfl⟩
  · unfold create
    rw [← Prod.mk.eta (p := X.single st now _), h]

theorem delete_tells (X : Session) (st : Store) (now : Time) (p : String) (version : Version) :
    Tells (X.multi st now [.delete p version]).1 p (X.delete st now p version).1 := by
  refine tells_of_single (.delete p version) (fun o _ _ hanswers h => ?_) fun g h => ?_
  · unfold delete
    rw [← Prod.mk.eta (p := X.single st now _), h]
    cases hanswers
    exact ⟨_, rfl⟩
  · unfold delete
    rw [← Prod.mk.eta (p := X.single st now _), h]

theorem setData_tells (X : Session) (st : Store) (now : Time) (p : String) (data : Bytes)
    (version : Version) :
    Tells (X.multi st now [.setData p data version]).1 p (X.setData st now p data version).1 := by
  refine tells_of_single (.setData p data version) (fun o _ _ hanswers h => ?_) fun g h => ?_
  · unfold setData
    rw [← Prod.mk.eta (p := X.single st now _), h]
    cases hanswers
    exact ⟨_, rfl⟩
  · unfold setData
    rw [← Prod.mk.eta (p := X.single st now _), h]

theorem Tells.not_internal {α : Type} {ops : List Op} {p : String} {answer : Except Fault α}
    (h : Tells (X.multi st now ops).1 p answer) (hf : answer = .error f) : f.internal = false := by
  obtain ⟨g, hg, rfl⟩ := (h f).1 hf
  rw [Fault.internal_told]
  exact (multi_error hg).1

end Changing

section Reading

variable {p : String} {mask : Mask} {required : Bool}

theorem watchedRead_cases (X : Session) (st : Store) (p : String) (mask : Mask) (required : Bool) :
    (∃ f, X.watchedRead st p mask required = (.error f, st) ∧ f.internal = false ∧
      f.refusal? = none) ∨
    (required = true ∧ st.tree.lookup p = none ∧
      X.watchedRead st p mask required = (.ok (st.tree, none), st)) ∨
    ∃ h, (X.watchedRead st p mask required).1 = .ok (st.tree, some h) ∧
      (required = true → (st.tree.lookup p).isSome = true) := by
  unfold watchedRead
  cases hread : X.checkRead p with
  | error f => exact .inl ⟨f, rfl, checkRead_error hread⟩
  | ok _ =>
      unfold Store.watchAndRead
      cases hrun : st.checkRunning with
      | error f =>
          obtain rfl := Store.checkRunning_error hrun
          exact .inl ⟨_, rfl, rfl, rfl⟩
      | ok _ =>
          simp only [Writer.watchAndRead, Engine.watchAndRead]
          by_cases habsent : (required && !st.tree.contains p) = true
          · obtain ⟨hrequired, hlookup⟩ := Bool.and_eq_true_iff.1 habsent
            refine .inr (.inl ⟨hrequired, by simpa [Tree.contains] using hlookup, ?_⟩)
            rw [if_pos (show (required && !st.writer.engine.tree.contains p) = true from habsent)]
            rfl
          · rw [if_neg (show ¬(required && !st.writer.engine.tree.contains p) = true from habsent)]
            cases hreg : st.writer.engine.hub.register X.id p mask with
            | error f => exact .inl ⟨f, rfl, Hub.register_error hreg⟩
            | ok a =>
                refine .inr (.inr ⟨a.1, rfl, fun hrequired => ?_⟩)
                simpa [hrequired, Tree.contains, Option.isSome_iff_ne_none] using habsent

theorem existsWatched_error (h : (X.existsWatched st p).1 = .error f) : f.internal = false := by
  unfold existsWatched at h
  rcases X.watchedRead_cases st p .data false with ⟨g, hread, hg, -⟩ | ⟨hno, -⟩ | ⟨k, hread, -⟩
  · rw [hread] at h
    exact Except.error.inj h ▸ hg
  · cases hno
  · rw [← Prod.mk.eta (p := X.watchedRead st p .data false), hread] at h
    cases h

/-- When a watched read says that there is no node, it was answered with a tree that has none, and
nothing has been registered. -/
def Misses {α : Type} (X : Session) (st : Store) (p : String) (mask : Mask)
    (r : Except Fault α × Store) : Prop :=
  ∀ q cause, r.1 = .error (.refused q cause) → q = p ∧ cause = .noNode ∧
    st.tree.lookup p = none ∧ X.watchedRead st p mask true = (.ok (st.tree, none), st) ∧ r.2 = st

theorem required_cases {α : Type} {r : Except Fault α × Store}
    (herror : ∀ g, X.watchedRead st p mask true = (.error g, st) → r.1 = .error g)
    (habsent : X.watchedRead st p mask true = (.ok (st.tree, none), st) →
      st.tree.lookup p = none → r.1 = .error (noNode p))
    (hfound : ∀ k n, (X.watchedRead st p mask true).1 = .ok (st.tree, some k) →
      st.tree.lookup p = some n → ∃ a, r.1 = .ok a)
    (hstore : r.2 = (X.watchedRead st p mask true).2) :
    (∀ f, r.1 = .error f → f.internal = false) ∧ X.Misses st p mask r := by
  rcases X.watchedRead_cases st p mask true with
    ⟨g, hread, hg, hrefusal⟩ | ⟨-, hlookup, hread⟩ | ⟨k, hread, hlookup⟩
  · rw [Misses, herror g hread]
    refine ⟨fun f h => Except.error.inj h ▸ hg, fun q cause h => ?_⟩
    rw [Except.error.inj h] at hrefusal
    cases hrefusal
  · rw [Misses, habsent hread hlookup, hstore, hread]
    refine ⟨fun f h => Except.error.inj h ▸ rfl, fun q cause h => ?_⟩
    obtain ⟨rfl, rfl⟩ := Fault.refused.inj (Except.error.inj h)
    exact ⟨rfl, rfl, hlookup, rfl, rfl⟩
  · obtain ⟨n, hn⟩ := Option.isSome_iff_exists.1 (hlookup rfl)
    obtain ⟨a, ha⟩ := hfound k n hread hn
    rw [Misses, ha]
    exact ⟨nofun, nofun⟩

theorem getDataWatched_spec (X : Session) (st : Store) (p : String) :
    (∀ f, (X.getDataWatched st p).1 = .error f → f.internal = false) ∧
      X.Misses st p .data (X.getDataWatched st p) := by
  refine required_cases (fun g hread => ?_) (fun hread hlookup => ?_) (fun k n hread hn => ?_)
    (X.getDataWatched_snd st p) <;> unfold getDataWatched
  · rw [hread]
  · simp only [hread, hlookup]
  · rw [← Prod.mk.eta (p := X.watchedRead st p .data true), hread]
    simp only [hn]
    exact ⟨_, rfl⟩

theorem getChildrenWatched_spec (X : Session) (st : Store) (p : String) :
    (∀ f, (X.getChildrenWatched st p).1 = .error f → f.internal = false) ∧
      X.Misses st p .children (X.getChildrenWatched st p) := by
  refine required_cases (fun g hread => ?_) (fun hread hlookup => ?_) (fun k n hread hn => ?_)
    (X.getChildrenWatched_snd st p) <;> unfold getChildrenWatched
  · rw [hread]
  · simp only [hread, Tree.children?, hlookup, Option.map_none]
  · rw [← Prod.mk.eta (p := X.watchedRead st p .children true), hread]
    simp only [Tree.children?, hn, Option.map_some]
    exact ⟨_, rfl⟩

end Reading

section Answering

theorem error_of_fault? {α : Type} {of : α → Answer} (hof : ∀ a, (of a).fault? = none)
    {r : Except Fault α} (h : (answer of r).fault? = some f) : r = .error f := by
  cases r with
  | ok a => cases (hof a).symm.trans h
  | error g => exact congrArg Except.error (Option.some.inj h)

theorem exists?_error {p : String} (h : X.exists? st p = .error f) : f.internal = false := by
  unfold exists? at h
  split at h <;> rename_i hread
  · obtain rfl := Except.error.inj h
    exact (checkRead_error hread).1
  · cases h

theorem getData_error {p : String} (h : X.getData st p = .error f) : f.internal = false := by
  unfold getData at h
  split at h <;> rename_i hread
  · obtain rfl := Except.error.inj h
    exact (checkRead_error hread).1
  · split at h
    · cases h
    · exact Except.error.inj h ▸ rfl

theorem getChildren_error {p : String} (h : X.getChildren st p = .error f) :
    f.internal = false := by
  unfold getChildren at h
  split at h <;> rename_i hread
  · obtain rfl := Except.error.inj h
    exact (checkRead_error hread).1
  · split at h
    · cases h
    · exact Except.error.inj h ▸ rfl

theorem watch_error {p : String} {mask : Mask} (h : (X.watch st p mask).1 = .error f) :
    f.internal = false := by
  unfold watch at h
  split at h <;> rename_i hactive
  · obtain rfl := Except.error.inj h
    exact checkActive_error hactive ▸ rfl
  · split at h <;> rename_i hreg
    · obtain rfl := Except.error.inj h
      exact (Hub.register_error hreg).1
    · cases h

theorem cancel_error {k : Handle} (h : (cancel st k).1 = .error f) : f.internal = false := by
  unfold cancel at h
  split at h <;> rename_i hcancel
  · obtain rfl := Except.error.inj h
    exact Hub.cancel_error hcancel
  · cases h

theorem sync_error (h : (X.sync st).1 = .error f) : f.internal = false := by
  unfold sync at h
  split at h <;> rename_i hactive
  · obtain rfl := Except.error.inj h
    exact checkActive_error hactive ▸ rfl
  · unfold Store.sync at h
    split at h <;> rename_i hrun
    · obtain rfl := Except.error.inj h
      exact Store.checkRunning_error hrun ▸ rfl
    · simp only [Writer.sync, Engine.sync] at h
      split at h <;> rename_i hbarrier
      · obtain rfl := Except.error.inj h
        exact Hub.barrier_error (congrArg Prod.fst hbarrier)
      · cases h

theorem takeUntil_error {target : Zxid} {limit : Nat}
    (h : (X.takeUntil st target limit).1 = .error f) : f = .sessionClosed X.id := by
  induction limit generalizing st with
  | zero => exact (Except.error.inj h).symm
  | succ limit ih =>
      unfold takeUntil at h
      split at h
      · split at h
        · cases h
        · exact ih h
      · split at h <;> rename_i hrest
        · cases h
        · obtain rfl := Except.error.inj h
          exact ih (congrArg Prod.fst hrest)
      · exact (Except.error.inj h).symm

theorem drainUntilSynced_error (h : (X.drainUntilSynced st).1 = .error f) :
    f.internal = false := by
  unfold drainUntilSynced at h
  split at h <;> rename_i hsync
  · obtain rfl := Except.error.inj h
    exact sync_error (congrArg Prod.fst hsync)
  · exact takeUntil_error h ▸ rfl

theorem close_error (h : (X.close st).1 = .error f) : f.internal = false := by
  unfold close at h
  split at h
  · split at h <;> rename_i hdetach
    · obtain rfl := Except.error.inj h
      exact Hub.detach_error hdetach
    · cases h
  · cases h

theorem perform_fault? {call : Call} (h : (X.perform st now call).1.fault? = some f) :
    f.internal = false := by
  cases call with
  | multi ops => exact (multi_error (error_of_fault? (fun _ => rfl) h)).1
  | transaction ops =>
      simp only [perform, commit_addAll] at h
      exact (multi_error (error_of_fault? (fun _ => rfl) h)).1
  | create p data mode =>
      exact (X.create_tells st now p data mode).not_internal (error_of_fault? (fun _ => rfl) h)
  | delete p version =>
      exact (X.delete_tells st now p version).not_internal (error_of_fault? (fun _ => rfl) h)
  | setData p data version =>
      exact (X.setData_tells st now p data version).not_internal (error_of_fault? (fun _ => rfl) h)
  | checkExists p => exact exists?_error (error_of_fault? (fun _ => rfl) h)
  | getData p => exact getData_error (error_of_fault? (fun _ => rfl) h)
  | getChildren p => exact getChildren_error (error_of_fault? (fun _ => rfl) h)
  | existsWatched p => exact existsWatched_error (error_of_fault? (fun _ => rfl) h)
  | getDataWatched p => exact (X.getDataWatched_spec st p).1 f (error_of_fault? (fun _ => rfl) h)
  | getChildrenWatched p =>
      exact (X.getChildrenWatched_spec st p).1 f (error_of_fault? (fun _ => rfl) h)
  | watch p mask => exact watch_error (error_of_fault? (fun _ => rfl) h)
  | cancel k => exact cancel_error (error_of_fault? (fun _ => rfl) h)
  | sync => exact sync_error (error_of_fault? (fun _ => rfl) h)
  | drain => exact drainUntilSynced_error (error_of_fault? (fun _ => rfl) h)
  | close => exact close_error (error_of_fault? (fun _ => rfl) h)
  | tryNext => cases h
  | next => cases h
  | info => cases h

end Answering

end Session

namespace Server

def Answer.fault? : Answer → Option Fault
  | .fault f => some f
  | .session a => a.fault?
  | _ => none

theorem step_fault? {v : Server} {now : Time} {call : Call} {f : Fault}
    (h : (v.step now call).1.fault? = some f) : f.internal = false := by
  cases call with
  | connect =>
      simp only [step, connect] at h
      split at h <;> rename_i hconnect
      · cases h
      · obtain rfl := Option.some.inj h
        rcases v.store.connect_cases with ⟨g, hattach, hg, -⟩ | ⟨hok, -⟩
        · rw [hconnect] at hg
          obtain rfl := Except.error.inj hg
          exact Watch.Hub.attach_error hattach
        · rw [hconnect] at hok
          cases hok
  | session n call =>
      simp only [step] at h
      split at h
      · cases h
      · exact Session.perform_fault? h
  | drop n =>
      simp only [step] at h
      split at h <;> cases h

end Server

theorem Store.orphan_internal (st : Store) (r : Request) : (st.orphan r).1.internal = false := by
  unfold orphan
  dsimp only
  split
  · rename_i f hearly
    cases r with
    | submit s ops => exact (Config.checkBatch_error hearly).1
    | sync s => cases hearly
    | watch s p mask required => cases hearly
  · split
    · rename_i f hrun
      exact checkRunning_error hrun ▸ rfl
    · rfl

section Reached

namespace Draft

variable {d : Draft} {p r : String}

theorem setData_of_expect {version : Version} {n : Node} (h : d.expect p version = .ok n)
    (data : Bytes) (zxid : Zxid) (time : Time) : (d.setData p data zxid time).isSome = true := by
  obtain ⟨-, hn, -⟩ := expect_ok h
  simp [setData, hn]

theorem parent?_of_target (hd : View.Linked d.resolve) {mode : CreateMode}
    (h : d.target r mode = .ok p) (hlive : d.isLive p = false) :
    (Path.parent? p).isSome = true := by
  have hroot : p ≠ Path.root := by
    rintro rfl
    obtain ⟨n, hn⟩ := hd.root
    simp [isLive, hn] at hlive
  obtain ⟨q, hq⟩ := Path.exists_parent? (target_ok h).2 hroot
  exact Option.isSome_iff_exists.2 ⟨q, hq⟩

end Draft

namespace World

variable {w : World} {h : History}

theorem recorded_step (hw : Tree.Recorded h w.tree) (a : Act) :
    ∃ h', Tree.Recorded h' (w.step a).tree := by
  rcases w.step_tree a with htree | ⟨s, plan, now, ops, -, hplan, htree⟩
  · exact ⟨h, htree ▸ hw⟩
  · exact ⟨_, htree ▸ hw.commit hplan⟩

theorem recorded_run (hw : Tree.Recorded h w.tree) (acts : List Act) :
    ∃ h', Tree.Recorded h' (w.run acts).tree := by
  induction acts generalizing w h with
  | nil => exact ⟨h, hw⟩
  | cons a acts ih =>
      obtain ⟨h', hstep⟩ := recorded_step hw a
      exact ih hstep

theorem recorded_start {disk : Journal.Disk} {config : Config} {st : Store}
    (hopen : Store.openOn disk config = .ok st) : ∃ h, Tree.Recorded h (start st).tree := by
  obtain ⟨t, log, hreplay, rfl⟩ := Store.openOn_starts hopen
  obtain ⟨hlead, -⟩ := Tree.Leads.of_replayFrom hreplay
  exact ⟨_, Tree.Reachable.recorded hlead⟩

end World

end Reached

theorem internal_faults {disk : Journal.Disk} {config : Config} {st : Store}
    (hopen : Store.openOn disk config = .ok st) (acts : List World.Act) :
    let w := (World.start st).run acts
    (∀ now call f, (w.server.step now call).1.fault? = some f → f.internal = false) ∧
    (∀ request, (w.store.orphan request).1.internal = false) ∧
    (∀ id s ops, ∃ b, (Batch.submit id s ops).begin = .ok b ∧
      (∃ b', b.commit = .ok b') ∧ ∃ b', b.abort = .ok b') ∧
    (∀ now s ops f, (w.store.submit now s ops).1 = .error f →
      f.internal = false ∧ (w.store.submit now s ops).2.tree = w.tree) ∧
    (∀ (s : Stamp) ops d, (Draft.ofTree w.tree).after? s ops = some d →
      (∀ p version n, d.expect p version = .ok n →
        ∀ data, (d.setData p data s.zxid s.time).isSome = true) ∧
      ∀ r mode p, d.target r mode = .ok p → d.isLive p = false → (Path.parent? p).isSome = true) ∧
    ∀ X : Session,
      (∀ now p data mode, Session.Tells (X.multi w.store now [.create p data mode]).1 p
        (X.create w.store now p data mode).1) ∧
      (∀ now p version, Session.Tells (X.multi w.store now [.delete p version]).1 p
        (X.delete w.store now p version).1) ∧
      (∀ now p data version, Session.Tells (X.multi w.store now [.setData p data version]).1 p
        (X.setData w.store now p data version).1) ∧
      (∀ p, (X.existsWatched w.store p).1 ≠ .error (.request .notRegistered)) ∧
      (∀ p, X.Misses w.store p .data (X.getDataWatched w.store p)) ∧
      ∀ p, X.Misses w.store p .children (X.getChildrenWatched w.store p) := by
  intro w
  obtain ⟨_, hstart⟩ := World.recorded_start hopen
  obtain ⟨_, hrecorded⟩ := World.recorded_run hstart acts
  refine ⟨fun now call f => Server.step_fault?, w.store.orphan_internal,
    fun id s ops => ⟨_, rfl, ⟨_, rfl⟩, _, rfl⟩, fun now s ops f => Store.submit_error,
    fun s ops d hd => ⟨fun p version n h data => ?_, fun r mode p h hlive => ?_⟩, fun X => ⟨?_, ?_,
      ?_, ?_, ?_, ?_⟩⟩
  · exact Draft.setData_of_expect h data s.zxid s.time
  · exact Draft.parent?_of_target (hrecorded.linked_after? hd) h hlive
  · exact fun now => X.create_tells w.store now
  · exact fun now => X.delete_tells w.store now
  · exact fun now => X.setData_tells w.store now
  · intro p h
    cases Session.existsWatched_error h
  · exact fun p => (X.getDataWatched_spec w.store p).2
  · exact fun p => (X.getChildrenWatched_spec w.store p).2

theorem internal_faults_refused :
    ∃ st, Store.openOn (.blank .file) .standard = .ok st ∧
      let w := (World.start st).run
        [.call 10 .connect, .call 20 (.session 0 (.create "/a" [] .persistent))]
      ∃ X, w.session? 0 = some X ∧
        (X.create w.store 30 "/a" [1] .persistent).1 = .error (.refused "/a" .nodeExists) ∧
        (X.getDataWatched w.store "/b").1 = .error (.refused "/b" .noNode) ∧
        (X.getDataWatched w.store "/b").2 = w.store := by
  obtain ⟨st, hopen⟩ : ∃ st, Store.openOn (.blank .file) .standard = .ok st := ⟨_, rfl⟩
  refine ⟨st, hopen, ?_⟩
  intro w
  obtain ⟨X, hX, hmulti, hread⟩ : ∃ X, w.session? 0 = some X ∧
      (X.multi w.store 30 [.create "/a" [1] .persistent]).1 =
        .error (.rejected ⟨0, "/a", .nodeExists⟩ [.refused .nodeExists]) ∧
      (X.getDataWatched w.store "/b").1 = .error (.refused "/b" .noNode) := by
    obtain rfl := Except.ok.inj hopen
    exact ⟨_, rfl, rfl, rfl⟩
  obtain ⟨-, -, -, -, -, hsession⟩ := internal_faults hopen
    [.call 10 .connect, .call 20 (.session 0 (.create "/a" [] .persistent))]
  obtain ⟨hcreate, -, -, -, hdata, -⟩ := hsession X
  obtain ⟨-, -, -, -, hstore⟩ := hdata "/b" "/b" .noNode hread
  exact ⟨X, hX, (hcreate 30 "/a" [1] .persistent _).2 ⟨_, hmulti, rfl⟩, hread, hstore⟩

end Coordination
