import Mathlib

/-!
# Effects with a state that may stop

`ExceptT ε (StateM σ)`: what its operations do to a state, and `Except ε`: what came before a result.

* `bind_run`, `modify_run`, `get_bind_run` — one operation each;
* `ok_of_bind_run` — the parts of a computation that did not stop;
* `Keeps` — what computations keep, whether they stop or not, and how that is put together;
* `ok_bind`, `ok_of_bind`, `error_of_bind` — the parts of a computation that did not stop, and the part that did;
* `mapM_ok`, `forall₂_of_mapM` — a computation for each member of a list.
-/

namespace Visuall.Effect

variable {σ ε α β : Type}

theorem bind_run (x : ExceptT ε (StateM σ) α) (f : α → ExceptT ε (StateM σ) β) (s : σ) :
    (x >>= f) s = match x s with
      | (.ok a, s') => f a s'
      | (.error e, s') => (.error e, s') := by
  show ExceptT.bind x f s = _
  unfold ExceptT.bind ExceptT.mk
  show (StateT.bind x (ExceptT.bindCont f)) s = _
  unfold StateT.bind
  rcases x s with ⟨_ | a, s'⟩ <;> rfl

theorem modify_run (f : σ → σ) (s : σ) : (modify f : ExceptT ε (StateM σ) Unit) s = (.ok (), f s) := rfl

theorem get_bind_run (f : σ → ExceptT ε (StateM σ) α) (s : σ) : (get >>= f) s = f s s := rfl

theorem ok_of_bind_run {x : ExceptT ε (StateM σ) α} {f : α → ExceptT ε (StateM σ) β} {s t : σ} {b : β}
    (h : (x >>= f) s = (.ok b, t)) : ∃ a u, x s = (.ok a, u) ∧ f a u = (.ok b, t) := by
  rw [bind_run] at h
  rcases hx : x s with ⟨_ | a, u⟩
  · rw [hx] at h
    cases h
  · rw [hx] at h
    exact ⟨a, u, rfl, h⟩

/-- What holds of the state in front of a computation, holds of it behind. -/
def Keeps (I : σ → Prop) (x : ExceptT ε (StateM σ) α) : Prop := ∀ s, I s → I (x s).2

namespace Keeps

variable {I : σ → Prop} {x : ExceptT ε (StateM σ) α} {f : α → ExceptT ε (StateM σ) β}

theorem pure (a : α) : Keeps I (Pure.pure a : ExceptT ε (StateM σ) α) := fun _ h => h

theorem throw (e : ε) : Keeps I (MonadExcept.throw e : ExceptT ε (StateM σ) α) := fun _ h => h

theorem get : Keeps I (MonadState.get : ExceptT ε (StateM σ) σ) := fun _ h => h

theorem modify {g : σ → σ} (h : ∀ s, I s → I (g s)) : Keeps I (modifyThe σ g : ExceptT ε (StateM σ) Unit) := h

theorem bind (hx : Keeps I x) (hf : ∀ a, Keeps I (f a)) : Keeps I (x >>= f) := by
  intro s hs
  have hmid := hx s hs
  rw [bind_run]
  rcases hrun : x s with ⟨_ | a, t⟩
  · rw [hrun] at hmid
    exact hmid
  · rw [hrun] at hmid
    exact hf a t hmid

/-- Reading the state first, of which something is then known. -/
theorem get_bind {k : σ → ExceptT ε (StateM σ) α} (h : ∀ s, I s → I (k s s).2) : Keeps I (MonadState.get >>= k) := h

theorem ite {c : Prop} [Decidable c] {y : ExceptT ε (StateM σ) α} (hx : Keeps I x) (hy : Keeps I y) :
    Keeps I (if c then x else y) := by
  by_cases hc : c
  · rw [if_pos hc]
    exact hx
  · rw [if_neg hc]
    exact hy

end Keeps

theorem ok_bind (a : α) (f : α → Except ε β) : (Except.ok a >>= f) = f a := rfl

theorem ok_of_bind {x : Except ε α} {f : α → Except ε β} {b : β} (h : x >>= f = .ok b) :
    ∃ a, x = .ok a ∧ f a = .ok b := by
  cases x with
  | error e => cases h
  | ok a => exact ⟨a, rfl, h⟩

/-- Over a list every part of which gives a value, the values come in the order of the list. -/
theorem mapM_ok {f : α → Except ε β} {as : List α} (h : ∀ a ∈ as, ∃ b, f a = .ok b) :
    ∃ bs, as.mapM f = .ok bs ∧ List.Forall₂ (fun a b => f a = .ok b) as bs := by
  induction as with
  | nil => exact ⟨[], rfl, .nil⟩
  | cons a as ih =>
    obtain ⟨⟨b, hb⟩, has⟩ := List.forall_mem_cons.mp h
    obtain ⟨bs, hbs, hall⟩ := ih has
    refine ⟨b :: bs, ?_, .cons hb hall⟩
    rw [List.mapM_cons, hb, ok_bind, hbs]
    rfl

/-- The values of a list that did not stop come in the order of the list. -/
theorem forall₂_of_mapM {f : α → Except ε β} {as : List α} {bs : List β} (h : as.mapM f = .ok bs) :
    List.Forall₂ (fun a b => f a = .ok b) as bs := by
  induction as generalizing bs with
  | nil =>
    cases h
    exact .nil
  | cons a as ih =>
    rw [List.mapM_cons] at h
    obtain ⟨b, hb, hrest⟩ := ok_of_bind h
    obtain ⟨bs', hbs, hcons⟩ := ok_of_bind hrest
    cases hcons
    exact .cons hb (ih hbs)

/-- A list whose parts give the values in its order. -/
theorem mapM_of_forall₂ {f : α → Except ε β} {as : List α} {bs : List β} (h : List.Forall₂ (fun a b => f a = .ok b) as bs) :
    as.mapM f = .ok bs := by
  induction h with
  | nil => rfl
  | cons hb _ ih =>
    rw [List.mapM_cons, hb, ok_bind, ih]
    rfl

/-- The values of a list each part of which has one. -/
theorem mapM_some_iff {f : α → Option β} {as : List α} {bs : List β} :
    as.mapM f = some bs ↔ List.Forall₂ (fun a b => f a = some b) as bs := by
  induction as generalizing bs with
  | nil =>
    constructor
    · intro h
      cases h
      exact .nil
    · intro h
      cases h
      rfl
  | cons a as ih =>
    rw [List.mapM_cons, Option.bind_eq_bind, Option.bind_eq_some_iff]
    constructor
    · rintro ⟨b, hb, hrest⟩
      obtain ⟨bs', hbs, hcons⟩ := Option.bind_eq_some_iff.mp hrest
      cases hcons
      exact .cons hb (ih.mp hbs)
    · intro h
      cases h with
      | cons hb hrest => exact ⟨_, hb, Option.bind_eq_some_iff.mpr ⟨_, ih.mpr hrest, rfl⟩⟩

/-- The part that stopped. -/
theorem error_of_bind {x : Except ε α} {f : α → Except ε β} {e : ε} (h : x >>= f = .error e) :
    x = .error e ∨ ∃ a, x = .ok a ∧ f a = .error e := by
  cases x with
  | error e' =>
    cases h
    exact .inl rfl
  | ok a => exact .inr ⟨a, rfl, h⟩

end Visuall.Effect
