import Mathlib

/-!
# What roots reach

Words name objects, and objects refer to objects.

* `Reached` — the objects that a set of words reaches;
* `reached_subset_iff` — when one set of words reaches all that another one does.
-/

namespace Visuall.Rooted

variable {W H : Type*} {names : W → H → Prop} {refers : H → H → Prop} {roots sources : Set W} {h h' : H}

/-- **What the words of a set reach**: the objects that they name, and what these refer to. -/
def Reached (names : W → H → Prop) (refers : H → H → Prop) (roots : Set W) (h : H) : Prop :=
  ∃ w ∈ roots, ∃ first, names w first ∧ Relation.ReflTransGen refers first h

theorem reached_of_names {w : W} (hw : w ∈ roots) (hname : names w h) : Reached names refers roots h :=
  ⟨w, hw, h, hname, .refl⟩

theorem Reached.trans (h₁ : Reached names refers roots h) (h₂ : Relation.ReflTransGen refers h h') :
    Reached names refers roots h' := by
  obtain ⟨w, hw, first, hname, hpath⟩ := h₁
  exact ⟨w, hw, first, hname, hpath.trans h₂⟩

/-- **When words reach all that other words reach**: they reach what these name. -/
theorem reached_subset_iff : (∀ h, Reached names refers sources h → Reached names refers roots h) ↔
    ∀ w ∈ sources, ∀ h, names w h → Reached names refers roots h := by
  constructor
  · intro hall w hw h hname
    exact hall h (reached_of_names hw hname)
  · intro hall h hreached
    obtain ⟨w, hw, first, hname, hpath⟩ := hreached
    exact (hall w hw first hname).trans hpath

end Visuall.Rooted
