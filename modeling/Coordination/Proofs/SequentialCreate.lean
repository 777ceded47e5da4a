import Coordination.Proofs.Chronicle

/-!
A sequential create means the plain create of the completed name: it leaves the same draft, edit and
answer, or is refused for the same cause (`sequential_create`). The text `/` is the one exception.
It is refused for having no parent, although the names that complete it have one.
-/

namespace Coordination

namespace Draft

variable {d : Draft} {s : Stamp} {r p q : String} {data : Bytes} {e : Bool} {n : Node} {c : Int}

theorem accept_plain (hp : Path.valid p = true) :
    d.accept s (.create p data ⟨e, false⟩) = d.acceptCreateAt s p data e := by
  simp [accept, acceptCreate, target, hp]

theorem accept_plain_of_invalid (hp : Path.valid p ≠ true) :
    d.accept s (.create p data ⟨e, false⟩) = .error .badArguments := by
  simp [accept, acceptCreate, target, hp]

theorem accept_sequential (hr : Path.Open r) (hq : Path.parent? r = some q)
    (hn : d.resolve q = some n) :
    d.accept s (.create r data ⟨e, true⟩) =
      d.acceptCreateAt s (Path.numbered r n.stat.cversion) data e := by
  simp [accept, acceptCreate, target, Path.valid_append_one.2 hr, hq, hn]

theorem acceptCreateAt_ne_badArguments (hq : Path.parent? p = some q) :
    d.acceptCreateAt s p data e ≠ .error .badArguments := by
  unfold acceptCreateAt
  rw [hq]
  split
  · simp
  · dsimp only
    split <;> simp

theorem acceptCreateAt_orphan (h : View.Linked d.resolve) (hq : Path.parent? p = some q)
    (hn : d.resolve q = none) : d.acceptCreateAt s p data e = .error .noNode := by
  have hp : d.resolve p = none := Option.eq_none_iff_forall_ne_some.2 fun m hm => by
    obtain ⟨q', hq', n, hn', -⟩ := h.parent ⟨m, hm⟩ (Path.ne_root_of_parent? hq)
    obtain rfl := Option.some.inj (hq.symm.trans hq')
    rw [hn] at hn'
    cases hn'
  simp [acceptCreateAt, isLive, hp, hq, hn]

theorem accept_numbered (h : View.Linked d.resolve) (hr : r ≠ Path.root)
    (hc : ∀ q n, Path.parent? (Path.numbered r c) = some q → d.resolve q = some n →
      n.stat.cversion = c) :
    d.accept s (.create r data ⟨e, true⟩) =
      d.accept s (.create (Path.numbered r c) data ⟨e, false⟩) := by
  by_cases hopen : Path.Open r
  · obtain ⟨q, hq⟩ := hopen.exists_parent? hr
    have hq' := Path.parent?_numbered hq c
    rw [accept_plain (Path.valid_numbered_iff.2 hopen)]
    cases hn : d.resolve q with
    | some n => rw [accept_sequential hopen hq hn, hc q n hq' hn]
    | none =>
        -- without its parent the numbered node cannot be there either
        rw [acceptCreateAt_orphan h hq' hn]
        simp [accept, acceptCreate, target, Path.valid_append_one.2 hopen, hq, hn]
  · rw [accept_plain_of_invalid (mt Path.valid_numbered_iff.1 hopen)]
    simp [accept, acceptCreate, target, mt Path.valid_append_one.1 hopen]

end Draft

theorem sequential_create {h : History} {t : Tree} (ht : Tree.Recorded h t) (s : Stamp)
    {ops : List Op} {d : Draft}
    (hd : (Draft.ofTree t).after? s ops = some d) (data : Bytes) (e : Bool) :
    (∀ r c, r ≠ Path.root →
      (∀ q n, Path.parent? (Path.numbered r c) = some q → d.resolve q = some n →
        n.stat.cversion = c) →
      d.accept s (.create r data ⟨e, true⟩) =
        d.accept s (.create (Path.numbered r c) data ⟨e, false⟩)) ∧
    (∀ r c, Path.valid (r ++ "1") = Path.valid (Path.numbered r c)) ∧
    (∀ p, d.isLive p = true → p ≠ Path.root →
      d.accept s (.create (p ++ "/") data ⟨e, true⟩) ≠ .error .badArguments) ∧
    d.accept s (.create Path.root data ⟨e, true⟩) = .error .badArguments ∧
    (∀ c, d.accept s (.create (Path.numbered Path.root c) data ⟨e, false⟩) ≠
      .error .badArguments) := by
  have hlinked := ht.linked_after? hd
  refine ⟨fun r c hr hc => Draft.accept_numbered hlinked hr hc, fun r c => ?_, fun p hp hr => ?_,
    rfl, fun c => ?_⟩
  · exact Bool.eq_iff_iff.2 (Path.valid_append_one.trans Path.valid_numbered_iff.symm)
  · obtain ⟨n, hn⟩ := Option.isSome_iff_exists.1 hp
    have hv : Path.valid p = true := hlinked.valid ⟨n, hn⟩
    have hne : p ≠ "" := by
      rintro rfl
      cases hv
    have hparent := Path.parent?_append_slash hne
    rw [Draft.accept_sequential (Path.open_append_slash hv hr) hparent hn]
    exact Draft.acceptCreateAt_ne_badArguments (Path.parent?_numbered hparent _)
  · rw [Draft.accept_plain (Path.valid_numbered_iff.2 Path.open_root)]
    exact Draft.acceptCreateAt_ne_badArguments (Path.parent?_numbered_root c)

theorem sequential_create_queue :
    ∃ d, Tree.Recorded [] .initial ∧
      (Draft.ofTree .initial).after? ⟨1, 1000, 42⟩ [.create "/q" [] .persistent] = some d ∧
      d.accept ⟨1, 1000, 42⟩ (.create "/q/" [5] .ephemeralSequential) =
        d.accept ⟨1, 1000, 42⟩ (.create "/q/0000000000" [5] .ephemeralOnly) := by
  obtain ⟨d, hd, hq⟩ : ∃ d,
      (Draft.ofTree .initial).after? ⟨1, 1000, 42⟩ [.create "/q" [] .persistent] = some d ∧
      d.resolve "/q" = some (Node.create [] 1 1000 0) := ⟨_, rfl, rfl⟩
  obtain ⟨hsame, -⟩ := sequential_create .initial ⟨1, 1000, 42⟩ hd [5] true
  refine ⟨d, .initial, hd, hsame "/q/" 0 (by decide) ?_⟩
  intro q n hparent hn
  obtain rfl : "/q" = q := Option.some.inj hparent
  obtain rfl := Option.some.inj (hq.symm.trans hn)
  rfl

/-- No sequential node is made directly under the root by the root's own path. The plain create of
the completed name is accepted. -/
theorem sequential_create_root :
    let d := Draft.ofTree .initial
    let s : Stamp := ⟨1, 1000, 42⟩
    (d.resolve "/").map (·.stat.cversion) = some 0 ∧
      Path.parent? (Path.numbered "/" 0) = some "/" ∧
      d.accept s (.create "/" [] .persistentSequential) = .error .badArguments ∧
      ∃ a, d.accept s (.create (Path.numbered "/" 0) [] .persistent) = .ok a ∧
        a.outcome = .created "/0000000000" (Stat.created 1 1000 0 0) :=
  ⟨rfl, rfl, rfl, _, rfl, rfl⟩

end Coordination
