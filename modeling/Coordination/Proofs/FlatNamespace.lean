import Coordination.Proofs.WellFormed
import Mathlib.Logic.Function.Basic

namespace Coordination

abbrev Flat := String → Option Version

namespace Flat

def Live (m : Flat) (p : String) : Prop := ∃ x, m p = some x

def HoldsBelow (m : Flat) (p : String) : Prop :=
  ∃ q, m.Live q ∧ (p ++ "/").toList <+: q.toList

def expect (m : Flat) (p : String) (version : Version) : Except Refusal Version :=
  if Path.valid p = false then .error .badArguments
  else
    match m p with
    | none => .error .noNode
    | some x => if version ≠ anyVersion ∧ version ≠ x then .error .badVersion else .ok x

end Flat

/-- The path of the operation is not completed by a counter. -/
def Op.Plain : Op → Prop
  | .create _ _ mode => mode.sequential = false
  | _ => True

namespace View

variable {v : View} {p q : String} {n : Node}

def versions (v : View) : Flat := fun p => (v p).map (·.stat.version)

theorem live_versions : v.versions.Live p ↔ v.Live p := by
  cases hp : v p <;> simp [Flat.Live, Live, versions, hp]

/-- Whatever lives below a live node hangs there through one of its children. -/
theorem Linked.hasChildren_of_prefix (h : v.Linked) (hn : v p = some n) (hq : v.Live q)
    (hpre : (p ++ "/").toList <+: q.toList) : n.hasChildren = true := by
  have hp : p.toList ≠ [] := fun hnil => by
    have hvalid := h.valid ⟨n, hn⟩
    rw [String.toList_eq_nil_iff.1 hnil] at hvalid
    cases hvalid
  -- upwards from `q`, to the child of `p` that the slash was written for
  induction hl : q.toList.length using Nat.strongRecOn generalizing q with
  | ind l ih =>
      have hroot : q ≠ Path.root := by
        rintro rfl
        have hnil : p = "" := by simpa [Path.root] using hpre.length_le
        exact hp (by rw [hnil]; rfl)
      obtain ⟨r, hr, hc⟩ := h.parent hq hroot
      have hq' := congrArg String.toList (Path.child_name (h.valid hq) hr)
      have hname := (h.segment hc).noSlash
      rw [Path.toList_child] at hq'
      rw [← hq', String.toList_append] at hpre
      rcases Path.prefix_of_append_slash hname hpre with he | hpre
      · split at he <;> rename_i hroot'
        · exact absurd he hp
        · obtain rfl := String.toList_injective he
          obtain ⟨m, hm, hc⟩ := hc
          obtain rfl := Option.some.inj (hn.symm.trans hm)
          exact Node.hasChildren_iff.2 ⟨_, hc⟩
      · split at hpre <;> rename_i hroot'
        · simp at hpre
        · exact ih _ (hl ▸ Path.length_parent? (h.valid hq) hr) hc.live (by simpa using hpre) rfl

theorem Linked.hasChildren_iff (h : v.Linked) (hn : v p = some n) (hroot : p ≠ Path.root) :
    n.hasChildren = true ↔ v.versions.HoldsBelow p := by
  constructor
  · intro hc
    obtain ⟨c, hc⟩ := Node.hasChildren_iff.1 hc
    refine ⟨Path.child p c, live_versions.2 (h.child ⟨n, hn, hc⟩), ?_⟩
    simp [Path.toList_child, hroot]
  · rintro ⟨q, hq, hpre⟩
    exact h.hasChildren_of_prefix hn (live_versions.1 hq) hpre

end View

namespace Draft

variable {d : Draft} {s : Stamp} {p : String} {version : Version}

def versions (d : Draft) : Flat := View.versions d.resolve

end Draft

variable {h : History} {t : Tree} {s : Stamp}

end Coordination
