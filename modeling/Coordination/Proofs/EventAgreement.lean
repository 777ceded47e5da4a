import Coordination.Proofs.ChangeSet
import Coordination.Watch.Mask

namespace Coordination

open Watch (Mask)

def Watch.Mask.Includes (m m' : Mask) : Prop :=
  ∀ kind, m'.contains kind = true → m.contains kind = true

namespace Node

def content (n : Node) : Bytes × Version × Zxid × Zxid × SessionId :=
  (n.data, n.stat.version, n.stat.czxid, n.stat.mzxid, n.stat.owner)

def offspring (n : Node) : Zxid × List String × Version × Zxid :=
  (n.stat.czxid, n.childNames, n.stat.cversion, n.stat.pzxid)

end Node

namespace View

/-- Two views that no reader at `p` who is interested in the mask can tell apart. -/
structure Agrees (mask : Mask) (p : String) (u v : View) : Prop where
  content : mask.Includes .data → (v p).map Node.content = (u p).map Node.content
  offspring : mask.Includes .children → ∀ n, u p = some n →
    (v p).map Node.offspring = some n.offspring

variable {mask : Mask} {p : String} {u v w : View}

theorem Agrees.refl (mask : Mask) (p : String) (v : View) : Agrees mask p v v where
  content := fun _ => rfl
  offspring := by
    intro _ n hn
    rw [hn]
    rfl

theorem Agrees.trans (h : Agrees mask p u v) (h' : Agrees mask p v w) : Agrees mask p u w where
  content := fun hm => (h'.content hm).trans (h.content hm)
  offspring := by
    intro hm n hn
    obtain ⟨m, hv, he⟩ := Option.map_eq_some_iff.1 (h.offspring hm n hn)
    rw [← he]
    exact h'.offspring hm m hv

def Unheard (mask : Mask) (p : String) (es : List Event) : Prop :=
  ∀ e ∈ es, e.path = p → mask.contains e.kind = false

theorem Unheard.not_mem {es : List Event} {m : Mask} {kind : EventKind} (h : Unheard mask p es)
    (hm : mask.Includes m) (hk : m.contains kind = true) : ⟨p, kind⟩ ∉ es := fun he => by
  have hno := h _ he rfl
  rw [hm kind hk] at hno
  cases hno

theorem Covers.agrees {es : List Event} (h : Covers es p u v) (hes : Unheard mask p es) :
    Agrees mask p u v := by
  constructor
  · intro hm
    have hkept := h.data (hes.not_mem hm (by decide)) (hes.not_mem hm (by decide))
      (hes.not_mem hm (by decide))
    generalize u p = x, v p = y at hkept
    cases hkept with
    | none => rfl
    | some hs =>
        simp only [Option.map_some, Node.content, hs.data, hs.version, hs.czxid, hs.mzxid, hs.owner]
  · intro hm n hn
    obtain ⟨m, hv, hs⟩ := h.children (hes.not_mem hm (by decide)) (hes.not_mem hm (by decide)) n hn
    simp only [hv, Option.map_some, Node.offspring, Node.childNames, hs.czxid, hs.children,
      hs.cversion, hs.pzxid]

end View

namespace Tree

end Tree

end Coordination
