import Visuall.Types.Resolve

/-!
# Replacing type variables

* `subst` — a type with its variables replaced, at any depth;
* `vars` — its variables, and `rigidVars` — those that stand inside of channel, function and union types, where a type is
  compared as a whole;
* `subst_congr`, `subst_eq_self_iff` — what a replacement depends on, and when it changes nothing.
-/

namespace Visuall.Types

mutual

/-- A type, with every variable replaced. -/
def subst (θ : List Char → Ty) : Ty → Ty
  | .typeVar name => θ name
  | .list elem => .list (subst θ elem)
  | .dict key value => .dict (subst θ key) (subst θ value)
  | .tuple elems => .tuple (substs θ elems)
  | .func name ret params => .func name (subst θ ret) (substs θ params)
  | .union members => .union (substs θ members)
  | .chan elem => .chan (subst θ elem)
  | t => t

def substs (θ : List Char → Ty) : List Ty → List Ty
  | [] => []
  | t :: ts => subst θ t :: substs θ ts

end

mutual

/-- The type variables of a type. -/
def vars : Ty → List (List Char)
  | .typeVar name => [name]
  | .list elem => vars elem
  | .dict key value => vars key ++ vars value
  | .tuple elems => varsAll elems
  | .func _ ret params => vars ret ++ varsAll params
  | .union members => varsAll members
  | .chan elem => vars elem
  | _ => []

def varsAll : List Ty → List (List Char)
  | [] => []
  | t :: ts => vars t ++ varsAll ts

end

mutual

/-- The type variables inside of channel, function and union types. -/
def rigidVars : Ty → List (List Char)
  | .list elem => rigidVars elem
  | .dict key value => rigidVars key ++ rigidVars value
  | .tuple elems => rigidVarsAll elems
  | .func name ret params => vars (.func name ret params)
  | .union members => varsAll members
  | .chan elem => vars elem
  | _ => []

def rigidVarsAll : List Ty → List (List Char)
  | [] => []
  | t :: ts => rigidVars t ++ rigidVarsAll ts

end

theorem mem_varsAll {n : List Char} {ts : List Ty} : n ∈ varsAll ts ↔ ∃ t ∈ ts, n ∈ vars t := by
  induction ts with
  | nil => simp [varsAll]
  | cons t ts ih => simp [varsAll, ih]

theorem mem_rigidVarsAll {n : List Char} {ts : List Ty} : n ∈ rigidVarsAll ts ↔ ∃ t ∈ ts, n ∈ rigidVars t := by
  induction ts with
  | nil => simp [rigidVarsAll]
  | cons t ts ih => simp [rigidVarsAll, ih]

variable {θ θ' : List Char → Ty}

mutual

/-- **Replacements that agree on the variables of a type, agree on the type.** -/
theorem subst_congr : (t : Ty) → (∀ n ∈ vars t, θ n = θ' n) → subst θ t = subst θ' t
  | .typeVar name, h => h name (List.mem_singleton_self name)
  | .list elem, h => congrArg Ty.list (subst_congr elem h)
  | .dict key value, h => by
    rw [subst, subst, subst_congr key fun n hn => h n (List.mem_append_left _ hn),
      subst_congr value fun n hn => h n (List.mem_append_right _ hn)]
  | .tuple elems, h => congrArg Ty.tuple (substs_congr elems h)
  | .func name ret params, h => by
    rw [subst, subst, subst_congr ret fun n hn => h n (List.mem_append_left _ hn),
      substs_congr params fun n hn => h n (List.mem_append_right _ hn)]
  | .union members, h => congrArg Ty.union (substs_congr members h)
  | .chan elem, h => congrArg Ty.chan (subst_congr elem h)
  | .int, _ | .float, _ | .str, _ | .bool, _ | .void, _ | .null, _ | .unknown, _ | .cls _, _ | .interface _, _ => rfl

theorem substs_congr : (ts : List Ty) → (∀ n ∈ varsAll ts, θ n = θ' n) → substs θ ts = substs θ' ts
  | [], _ => rfl
  | t :: ts, h => by
    rw [substs, substs, subst_congr t fun n hn => h n (List.mem_append_left _ hn),
      substs_congr ts fun n hn => h n (List.mem_append_right _ hn)]

end

mutual

/-- **A replacement changes nothing** if it leaves every variable of the type as it is. -/
theorem subst_eq_self_iff : (t : Ty) → (subst θ t = t ↔ ∀ n ∈ vars t, θ n = .typeVar n)
  | .typeVar name => by simp [subst, vars]
  | .list elem => by simp [subst, vars, subst_eq_self_iff elem]
  | .dict key value => by
    simp [subst, vars, subst_eq_self_iff key, subst_eq_self_iff value, or_imp, forall_and]
  | .tuple elems => by simp [subst, vars, substs_eq_self_iff elems]
  | .func name ret params => by
    simp [subst, vars, subst_eq_self_iff ret, substs_eq_self_iff params, or_imp, forall_and]
  | .union members => by simp [subst, vars, substs_eq_self_iff members]
  | .chan elem => by simp [subst, vars, subst_eq_self_iff elem]
  | .int | .float | .str | .bool | .void | .null | .unknown | .cls _ | .interface _ => by simp [subst, vars]

theorem substs_eq_self_iff : (ts : List Ty) → (substs θ ts = ts ↔ ∀ n ∈ varsAll ts, θ n = .typeVar n)
  | [] => by simp [substs, varsAll]
  | t :: ts => by simp [substs, varsAll, subst_eq_self_iff t, substs_eq_self_iff ts, or_imp, forall_and]

end

end Visuall.Types
